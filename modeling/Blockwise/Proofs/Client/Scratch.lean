import Blockwise.Proofs.Client.Bypass
import Blockwise.Proofs.FileCache.Orphans
import Blockwise.Proofs.Stream.Sharing
import Blockwise.Proofs.Volume.Safety

namespace Blockwise

open Act

variable {ω β ι ο κ α : Type} {pool : Nat} {P : ScratchPool → Prop}

namespace Directory

variable {d : Directory} {v : Volume β ι ο κ} {feed : Feed ι β} {name : String}

theorem cacheName_sharing (name : String) :
    Matches (Site.Sharing pool P) Eq (d.cacheName (plain v) name) (d.cacheName (plain v) name) := by
  refine (Site.onStore_matches _).bind ?_
  rintro stamp _ rfl
  exact .pure rfl

theorem openInput_sharing (hpool : d.pool = pool) (name : String) (purpose : Purpose) :
    Matches (Site.Sharing pool P) (Same (Source.Shallow pool))
      (d.openInput feed (plain v) name purpose) (d.openInput feed (plain v) name purpose) := by
  have hplain : Matches (Site.Sharing pool P) (Same fun i => ∃ input, i = Source.plain input)
      ((plain v).openInput name purpose) ((plain v).openInput name purpose) :=
    (Site.onStore_matches _).map fun input _ h => ⟨h ▸ rfl, input, rfl⟩
  refine hplain.bind ?_
  rintro _ _ ⟨rfl, input, rfl⟩
  split
  · refine (cacheName_sharing name).bind ?_
    rintro cacheName _ rfl
    exact .pure ⟨rfl, .cached input _ hpool⟩
  · exact .pure ⟨rfl, .plain input⟩

theorem create_sharing (name : String) (purpose : Purpose) :
    Matches (Site.Sharing pool P) (Same (Output.Settled pool)) (d.create (plain v) name purpose)
      (d.create (plain v) name purpose) := by
  have hplain : Matches (Site.Sharing pool P) (Same fun o => ∃ handle, o = Output.plain handle)
      ((plain v).create name purpose) ((plain v).create name purpose) :=
    (Site.onStore_matches _).map fun handle _ h => ⟨h ▸ rfl, handle, rfl⟩
  refine hplain.bind ?_
  rintro _ _ ⟨rfl, handle, rfl⟩
  split
  · refine .pure ⟨rfl, trivial, fun settle hsettle P => ?_⟩
    obtain rfl := Option.some.inj hsettle
    exact cacheName_sharing name
  · exact .pure ⟨rfl, trivial⟩

theorem delete_sharing (name : String) :
    Matches (Site.Sharing pool P) Eq (d.delete (plain v) name) (d.delete (plain v) name) := by
  unfold delete
  split
  · refine (cacheName_sharing name).bind ?_
    rintro cacheName _ rfl
    exact (Site.onTier_matches (Tier.delete_matches cacheName)).bind fun _ _ _ =>
      Site.onStore_matches _
  · exact Site.onStore_matches _

theorem purge_sharing (name : String) :
    Matches (Site.Sharing pool P) Eq (d.purge (plain v) name) (d.purge (plain v) name) := by
  refine (cacheName_sharing name).attempt.bind ?_
  rintro result _ rfl
  cases result with
  | ok cacheName => exact Site.onTier_matches (Tier.delete_matches cacheName)
  | error e =>
    dsimp only
    split
    · exact .fail e
    · exact .pure rfl

theorem purgeListed_sharing :
    Matches (Site.Sharing pool P) Eq (d.purgeListed (plain v)) (d.purgeListed (plain v)) := by
  refine (Site.onStore_matches v.list).attempt.bind ?_
  rintro result _ rfl
  cases result with
  | ok names =>
    refine .foldlM (fun first name => ?_) _
    refine (purge_sharing name).attempt.bind ?_
    rintro next _ rfl
    exact .pure rfl
  | error e => exact .pure rfl

theorem close_sharing :
    Matches (Site.Sharing pool P) Eq (d.close (plain v)) (d.close (plain v)) := by
  have hclosed : Matches (Site.Sharing pool P) Eq (plain v).close (plain v).close :=
    Site.onStore_matches v.close
  unfold close
  split
  · refine purgeListed_sharing.bind ?_
    rintro purged _ rfl
    refine hclosed.bind fun _ _ _ => ?_
    cases purged with
    | ok _ => exact .pure rfl
    | error e => exact .fail e
  · exact hclosed.bind fun _ _ _ => .pure rfl

end Directory

section Sharing

variable {p : Port ω β β ι ο κ} {dirs : ω → Directory}

-- An input that takes its buffers from the pool, and an output that settles its name alike.
abbrev Pooled (pool : Nat) : Opened ω (Source ι) → Opened ω (Source ι) → Prop :=
  Same fun held => held.handle.Shallow pool

abbrev Settling (pool : Nat) : Opened ω (Output ο β) → Opened ω (Output ο β) → Prop :=
  Same fun held => held.handle.Settled pool

-- What is asked of the handle alone does not depend on what it was made for.
theorem alike_same (good : α → Prop) (on : ω) (name : String) (purpose : Purpose) :
    Opened.Alike (Same fun held => good held.handle) on name purpose = Same good := by
  funext a b
  refine propext ⟨?_, ?_⟩
  · rintro ⟨hsame, hgood⟩
    cases hsame
    exact ⟨rfl, hgood⟩
  · rintro ⟨rfl, hgood⟩
    exact ⟨rfl, hgood⟩

theorem release_sharing (keeper : Keeper κ β) :
    Matches (Joined Eq (Site.Sharing pool P)) Eq keeper.onSite.release keeper.onSite.release := by
  refine (Matches.refl keeper.release).onPart ?_ ?_
  · rintro ⟨lock, s⟩ ⟨_, s'⟩ ⟨rfl, hs⟩
    exact Prod.ext rfl hs.store.symm
  · rintro ⟨lock, s⟩ ⟨_, s'⟩ r _ ⟨rfl, hs⟩ rfl
    exact ⟨rfl, hs.tier, rfl⟩

theorem through_sharing (hpools : ∀ on, (dirs on).pool = pool) :
    Port.Matches (Site.Sharing pool P) (Pooled pool) (Settling pool) (p.through dirs)
      (p.through dirs) := by
  have hsink : (Output.sink p.sink).Shares pool (Output.Settled pool) := Output.sink_shares p.sink
  constructor
  case openInput =>
    intro on name purpose
    rw [alike_same]
    exact Directory.openInput_sharing (hpools on) name purpose
  case create =>
    intro on name purpose
    rw [alike_same]
    exact Directory.create_sharing name purpose
  case delete => exact fun on name => Directory.delete_sharing name
  case close => exact fun on => Directory.close_sharing
  case lock =>
    intro on name
    refine (Site.onStore_matches _).map ?_
    rintro lock _ rfl
    rfl
  case shown =>
    rintro on name purpose source _ ⟨hsame, _⟩
    cases hsame
    exact ⟨rfl, rfl⟩
  case seek =>
    rintro on name purpose source _ position ⟨hsame, hsource⟩
    cases hsame
    exact Source.seek_sharing hsource P position
  case clone =>
    rintro on name purpose source _ ⟨hsame, hsource⟩
    cases hsame
    rw [alike_same]
    exact Source.clone_sharing hsource P
  case written =>
    rintro on name purpose out _ ⟨hsame, _⟩
    cases hsame
    exact ⟨rfl, rfl⟩
  case write =>
    intro on name purpose data
    rw [alike_same]
    exact hsink.write P data
  case flush =>
    intro on name purpose
    rw [alike_same]
    exact hsink.flush P
  case closeOutput =>
    intro on name purpose
    rw [alike_same]
    exact hsink.close P
  case drop =>
    rintro on name purpose out _ s s' ⟨hsame, hout⟩ hs
    cases hsame
    exact hsink.drop P out s s' hout hs
  case release => exact release_sharing p.keeper
  case dropLock => exact fun lock s s' hs => ⟨hs.tier, by simp [Port.through, Keeper.onSite, hs.store]⟩
  case outside => exact fun change s s' hs => ⟨hs.tier, by simp [Port.through, hs.store]⟩
  case stamped => exact fun _ => rfl
  case lockName => rfl
  all_goals
    intros
    exact Site.onStore_matches _

namespace Client

open Session (Answer)

variable {x y : Client ω (Site β) (Source ι) (Output ο β) κ} {a : Nat}

-- Whether a call is a read that comes to a miss for which a block is read.
def loads (p : Port ω β β ι ο κ) (x : Client ω (Site β) (Source ι) (Output ο β) κ) :
    Call ω β → Bool
  | .read handle len =>
    match x.inputs handle with
    | none => false
    | some held => held.handle.source.loads p.feed held.handle.position len x.world
  | _ => false

-- Whether a run has come to such a call.
def loaded (p : Port ω β β ι ο κ) (dirs : ω → Directory) :
    Client ω (Site β) (Source ι) (Output ο β) κ → List (Call ω β) → Bool
  | _, [] => false
  | x, call :: calls =>
    x.loads p call || loaded p dirs (x.perform (p.through dirs) call).2 calls

-- Two clients that differ in nothing but what the buffers of the pool hold.
abbrev Sharing (pool a : Nat) (x y : Client ω (Site β) (Source ι) (Output ο β) κ) : Prop :=
  Matches (Site.Sharing pool (ScratchPool.Holding a)) (Pooled pool) (Settling pool) x y

theorem Sharing.perform (hpools : ∀ on, (dirs on).pool = pool)
    (hfeed : ∀ input position len s, (p.feed.read input position len s).1.Within len)
    (h : Sharing pool a x y) (call : Call ω β) :
    (x.perform (p.through dirs) call).1 = (y.perform (p.through dirs) call).1 ∧
      Sharing pool (CacheLabel.lent (x.loads p call) a) (x.perform (p.through dirs) call).2
        (y.perform (p.through dirs) call).2 := by
  cases hcall : call.isRead with
  | false =>
    have hnone : x.loads p call = false := by
      cases call with
      | read handle len => cases hcall
      | _ => rfl
    rw [hnone]
    exact Matches.perform h (through_sharing hpools) hcall
  | true =>
    cases call with
    | read handle len =>
      refine Matches.read h handle len ?_ ?_
      · intro hnone
        simp only [loads, hnone]
        exact h.world
      · rintro on name purpose source _ position hheld ⟨hsame, hsource⟩
        cases hsame
        simp only [loads, hheld]
        exact Source.read_sharing hfeed hsource position len h.world
    | _ => cases hcall

theorem Sharing.run (hpools : ∀ on, (dirs on).pool = pool)
    (hfeed : ∀ input position len s, (p.feed.read input position len s).1.Within len)
    (h : Sharing pool a x y) (calls : List (Call ω β)) :
    x.answers (p.through dirs) calls = y.answers (p.through dirs) calls ∧
      Sharing pool (CacheLabel.lent (x.loaded p dirs calls) a) (x.after (p.through dirs) calls)
        (y.after (p.through dirs) calls) := by
  induction calls generalizing x y a with
  | nil => exact ⟨rfl, h⟩
  | cons call calls ih =>
    obtain ⟨hsame, hnext⟩ := h.perform hpools hfeed call
    obtain ⟨hrest, hlast⟩ := ih hnext
    have hlent (b c : Bool) : CacheLabel.lent c (CacheLabel.lent b a) = CacheLabel.lent (b || c) a := by
      cases b <;> cases c <;> rfl
    rw [hlent] at hlast
    exact ⟨by simp only [answers, hsame, hrest], hlast⟩

-- The client with other bytes in the buffers of a pool.
def withBuffers (x : Client ω (Site β) (Source ι) (Output ο β) κ) (pool : Nat) (q : ScratchPool)
    (buffers : List Bytes) : Client ω (Site β) (Source ι) (Output ο β) κ :=
  { x with world := { x.world with tier := { x.world.tier with
      pools := x.world.tier.pools.setIfInBounds pool { q with block := buffers } } } }

theorem Sharing.withBuffers {q : ScratchPool} {buffers : List Bytes} (h : Sharing pool a x x)
    (hq : x.world.tier.pools[pool]? = some q)
    (hsizes : buffers.map ByteArray.size = q.block.map ByteArray.size) :
    Sharing pool a x (x.withBuffers pool q buffers) := by
  obtain ⟨q', hq', hholding⟩ := h.world.tier.left
  obtain rfl := Option.some.inj (hq.symm.trans hq')
  have hlt := (Array.getElem?_eq_some_iff.mp hq).1
  have hlength : buffers.length = q.block.length := by simpa using congrArg List.length hsizes
  have hall : ∀ b ∈ buffers, b.size = ScratchPool.blockSize := by
    intro b hb
    have hmem : b.size ∈ q.block.map ByteArray.size := hsizes ▸ List.mem_map_of_mem hb
    obtain ⟨b', hb', hsize⟩ := List.mem_map.mp hmem
    exact hsize ▸ hholding.sizes b' hb'
  refine ⟨⟨⟨h.world.tier.sound, rfl, rfl, rfl, h.world.tier.left, ?_⟩, rfl⟩, h.inputs, h.outputs,
    h.locks⟩
  refine ⟨_, Array.getElem?_setIfInBounds_self_of_lt hlt, hholding.small, ?_, hall,
    hholding.allocations, hholding.depth_pos, hholding.le_one⟩
  exact hlength.trans hholding.length

-- Directories over plain volumes that share a pool, and a cache that has been used before or not.
-- Between the calls of a run the pool has all buffers it made: none until a read came to a miss for
-- which a block was read, and one from then on. With any other bytes in it, all that is answered,
-- published and cached from there is the same.
theorem scratch_kept {names : ω → String} {policies : ω → Policy} {depth : Nat} {tier : Tier}
    (hdirs : ∀ on, Directory.new (names on) (policies on) pool
      (Directory.plain (κ := κ) (p.volume on)) = .ok (dirs on))
    (hfeed : ∀ input position len s, (p.feed.read input position len s).1.Within len)
    (hfiles : ∀ c ∈ tier.files, ∃ sizing memory fresh steps,
      FileCache.ofSizing sizing memory = .ok fresh ∧
      c = (FileCache.after ⟨fresh, {}⟩ steps).part)
    (hpool : tier.pools[pool]? = some (ScratchPool.ofDepth depth)) (store : β)
    (calls : List (Call ω β)) :
    let start : Client ω (Site β) (Source ι) (Output ο β) κ := { world := ⟨tier, store⟩ }
    let x := start.after (p.through dirs) calls
    let a := if start.loaded p dirs calls then 1 else 0
    ∃ q, x.world.tier.pools[pool]? = some q ∧ q.pooled = (0, a) ∧ q.allocations = a ∧
      ∀ buffers : List Bytes, buffers.map ByteArray.size = q.block.map ByteArray.size →
        ∀ more : List (Call ω β),
          let y := x.withBuffers pool q buffers
          y.answers (p.through dirs) more = x.answers (p.through dirs) more ∧
            (y.after (p.through dirs) more).world.tier.journal =
              (x.after (p.through dirs) more).world.tier.journal ∧
            (y.after (p.through dirs) more).world.tier.files =
              (x.after (p.through dirs) more).world.tier.files := by
  intro start x a
  have hpools : ∀ on, (dirs on).pool = pool := by
    intro on
    rw [Directory.eq_of_new (hdirs on)]
  have hsound : ∀ c, tier.files = some c → c.Sound := by
    intro c hc
    obtain ⟨_, _, fresh, steps, hfresh, rfl⟩ := hfiles c hc
    exact ((FileCache.ofSizing_tidy hfresh).after (m := ⟨fresh, {}⟩) steps).sound
  have hfull : ∃ q, tier.pools[pool]? = some q ∧ q.Holding 0 :=
    ⟨_, hpool, ScratchPool.holding_ofDepth depth⟩
  have hstart : Sharing pool 0 start start :=
    matches_fresh ⟨⟨hsound, rfl, rfl, rfl, hfull, hfull⟩, rfl⟩
  obtain ⟨_, hx⟩ := hstart.run hpools hfeed calls
  obtain ⟨q, hq, hholding⟩ := hx.world.tier.left
  refine ⟨q, hq, ?_, hholding.allocations, fun buffers hsizes more => ?_⟩
  · simp only [ScratchPool.pooled, hholding.small, hholding.length]
    rfl
  · obtain ⟨hsame, hlast⟩ := (hx.withBuffers hq hsizes).run hpools hfeed more
    exact ⟨hsame.symm, hlast.world.tier.journal, hlast.world.tier.files⟩

-- A file is put in place behind the directory, and its first read comes to a miss. The one buffer
-- made for it serves a second file, whose block is shorter.
theorem scratch_kept_memory :
    ∃ c, FileCache.ofSizing (.ofLayout 1 4 8192) = .ok c ∧
    let tier : Tier := { files := some c, pools := #[.ofDepth 3] }
    let dirs : Unit → Directory := fun _ => ⟨"d", {}, 0⟩
    let calls : List (Call Unit MemoryStore) :=
      [.outside (·.publish "a" ⟨#[1, 2, 3]⟩), .outside (·.publish "b" ⟨#[4]⟩),
        .openInput () "a" .general "h", .read "h" 3, .openInput () "b" .general "h", .read "h" 1]
    let x := after ((memoryPort true).through dirs) { world := ⟨tier, {}⟩ } calls
    ∃ q, x.world.tier.pools[0]? = some q ∧ q.pooled = (0, 1) ∧ q.allocations = 1 ∧
      ∀ buffers : List Bytes, buffers.map ByteArray.size = q.block.map ByteArray.size →
        ∀ more : List (Call Unit MemoryStore),
          let y := x.withBuffers 0 q buffers
          y.answers ((memoryPort true).through dirs) more =
            x.answers ((memoryPort true).through dirs) more ∧
          (y.after ((memoryPort true).through dirs) more).world.tier.journal =
            (x.after ((memoryPort true).through dirs) more).world.tier.journal ∧
          (y.after ((memoryPort true).through dirs) more).world.tier.files =
            (x.after ((memoryPort true).through dirs) more).world.tier.files := by
  refine ⟨_, rfl, ?_⟩
  intro tier dirs calls x
  have hdirs : ∀ u, Directory.new "d" {} 0 (Directory.plain ((memoryPort true).volume u)) =
      .ok (dirs u) := fun _ => rfl
  have hkept := scratch_kept hdirs
    (fun input position len s => (MemoryStore.readAt_within input position len s).1)
    (fun c hc => ⟨.ofLayout 1 4 8192, .ample, _, [], rfl, (Option.mem_some.mp hc).symm⟩)
    (rfl : tier.pools[0]? = some (.ofDepth 3)) {} calls
  have hloaded : loaded (memoryPort true) dirs { world := ⟨tier, {}⟩ } calls = true := by
    decide +kernel
  simp only [hloaded, if_true] at hkept
  exact hkept

end Client

end Sharing

end Blockwise
