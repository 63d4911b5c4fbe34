import Blockwise.Proofs.Session.Careful
import Blockwise.Proofs.Volume.Safety

namespace Blockwise

open Act

namespace Session

-- The volumes that can be put together from so many stores and pools.
inductive Built (stores pools : Nat) : AnyVolume → Prop
  | backend {i : Nat} {v : Volume MemoryStore MemoryInput MemoryOutput MemoryLock} (hi : i < stores)
      (hv : v.Safe MemoryStore.regime (fun _ => True) (fun _ => True) fun _ => True) :
      Built stores pools (Directory.plain (World.memoryVolume i v))
  | directory {d : Directory} {below : AnyVolume} (hbelow : Built stores pools below)
      (hpool : d.pool < pools) : Built stores pools (d.volume World.feed below)

theorem Built.mono {stores pools stores' pools' : Nat} {v : AnyVolume} (h : Built stores pools v)
    (hstores : stores ≤ stores') (hpools : pools ≤ pools') : Built stores' pools' v := by
  induction h with
  | backend hi hv => exact .backend (Nat.lt_of_lt_of_le hi hstores) hv
  | directory _ hpool ih => exact .directory ih (Nat.lt_of_lt_of_le hpool hpools)

-- The volumes of a session whose handles are on stores in memory.
abbrev Sturdy (v : AnyVolume) (stores pools : Nat) (shape : Option (Nat × Nat)) : Prop :=
  Directory.Below.Sturdy v pools shape (World.regime stores) (Sited.InMemory stores)
    (Sited.InMemory stores) (Sited.InMemory stores)

theorem Built.sturdy {stores pools : Nat} {v : AnyVolume} (h : Built stores pools v)
    (shape : Option (Nat × Nat)) : Sturdy v stores pools shape := by
  induction h with
  | backend hi hv => exact Directory.plain_safe (World.memoryVolume_safe hi hv)
  | directory _ hpool ih => exact Directory.volume_safe ih hpool

variable {x x' start : Session}

def stores (x : Session) : Nat := x.site.store.memories.size

def pools (x : Session) : Nat := x.site.tier.pools.size

-- A session with sound stores and volumes, and without handles.
structure Fresh (x : Session) : Prop where
  intact : x.site.tier.Intact x.pools x.site.tier.layout
  pools_pos : 0 < x.pools
  dated : ∀ t ∈ x.site.store.memories, World.memoryRegime.holds t
  backends : ∀ b ∈ x.backends, Built x.stores x.pools b.volume
  directories : ∀ m ∈ x.directories,
    Built x.stores x.pools m.below ∧ Built x.stores x.pools m.volume
  inputs : x.inputs = ∅
  outputs : x.outputs = ∅
  locks : x.locks = ∅

def BackendSpec.InMemory : BackendSpec → Prop
  | .memory | .unstamped | .minimal => True
  | .disk _ _ => False

theorem Fresh.addMemory (h : x.Fresh) {v : Volume MemoryStore MemoryInput MemoryOutput MemoryLock}
    (hv : v.Safe MemoryStore.regime (fun _ => True) (fun _ => True) fun _ => True) :
    Fresh { x with
      site := { x.site with store := { x.site.store with
        memories := x.site.store.memories.push ⟨[], {}⟩ } }
      backends := x.backends.push
        ⟨.memory x.stores (), Directory.plain (World.memoryVolume x.stores v)⟩ } := by
  have hstores : stores { x with site := { x.site with store := { x.site.store with
      memories := x.site.store.memories.push ⟨[], {}⟩ } } } = x.stores + 1 := Array.size_push _
  have hmono {u : AnyVolume} (hu : Built x.stores x.pools u) : Built (x.stores + 1) x.pools u :=
    hu.mono (Nat.le_succ _) (Nat.le_refl _)
  refine ⟨h.intact, h.pools_pos, ?_, ?_, ?_, h.inputs, h.outputs, h.locks⟩
  · intro t ht
    rcases Array.mem_push.mp ht with ht | rfl
    · exact h.dated t ht
    · exact fun name file hfile => absurd hfile (Maps.getElem?_empty_ne name file)
  · intro b hb
    refine hstores.symm ▸ ?_
    rcases Array.mem_push.mp hb with hb | rfl
    · exact hmono (h.backends b hb)
    · exact .backend (Nat.lt_succ_self _) hv
  · intro m hm
    obtain ⟨hbelow, hvolume⟩ := h.directories m hm
    exact hstores.symm ▸ ⟨hmono hbelow, hmono hvolume⟩

theorem Fresh.addBackend (h : x.Fresh) {spec : BackendSpec} (hspec : spec.InMemory)
    (hadd : x.addBackend spec = .ok x') : x'.Fresh := by
  cases spec with
  | memory =>
    obtain rfl := Except.ok.inj hadd
    exact h.addMemory (MemoryStore.volume_safe true)
  | unstamped =>
    obtain rfl := Except.ok.inj hadd
    exact h.addMemory (MemoryStore.volume_safe false)
  | minimal =>
    obtain rfl := Except.ok.inj hadd
    exact h.addMemory (MemoryStore.volume_safe true).minimal
  | disk below prefile => exact hspec.elim

theorem mem_of_elementAt {α : Type} {xs : Array α} {i : Nat} {a : α}
    (h : Breach.elementAt xs.toList i = .ok a) : a ∈ xs := by
  unfold Breach.elementAt at h
  split at h
  · next b hb => exact Array.mem_def.mpr (Except.ok.inj h ▸ List.mem_of_getElem? hb)
  · cases h

theorem Fresh.built (h : x.Fresh) {on : Target} {v : AnyVolume} (hv : x.volume on = .ok v) :
    Built x.stores x.pools v := by
  cases on with
  | backend i =>
    have hv : (x.backend i).map (·.volume) = .ok v := hv
    cases hb : x.backend i with
    | error b =>
      rw [hb] at hv
      cases hv
    | ok b =>
      rw [hb] at hv
      obtain rfl := Except.ok.inj hv
      exact h.backends b (mem_of_elementAt hb)
  | directory i =>
    have hv : (x.mounted i).map (·.volume) = .ok v := hv
    cases hm : x.mounted i with
    | error b =>
      rw [hm] at hv
      cases hv
    | ok m =>
      rw [hm] at hv
      obtain rfl := Except.ok.inj hv
      exact (h.directories m (mem_of_elementAt hm)).2

theorem Fresh.mount (h : x.Fresh) {d : Directory} {below : AnyVolume} {pools' : Array ScratchPool}
    (hbelow : Built x.stores x.pools below) (hle : x.pools ≤ pools'.size)
    (hsound : ∀ p ∈ pools', p.Sound) (hpool : d.pool < pools'.size) :
    Fresh { x with
      site := { x.site with tier := { x.site.tier with pools := pools' } }
      directories := x.directories.push ⟨d, below, d.volume World.feed below⟩ } := by
  have hmono {u : AnyVolume} (hu : Built x.stores x.pools u) : Built x.stores pools'.size u :=
    hu.mono (Nat.le_refl _) hle
  refine ⟨⟨h.intact.sound, rfl, rfl, hsound⟩, Nat.lt_of_lt_of_le h.pools_pos hle, h.dated, ?_, ?_,
    h.inputs, h.outputs, h.locks⟩
  · exact fun b hb => hmono (h.backends b hb)
  · intro m hm
    rcases Array.mem_push.mp hm with hm | rfl
    · exact (h.directories m hm).imp hmono hmono
    · exact ⟨hmono hbelow, .directory (hmono hbelow) hpool⟩

-- With the shared pool or with a new one of its own, the directory is put on a volume that is there.
theorem Fresh.addDirectory (h : x.Fresh) {spec : DirectorySpec}
    (hadd : x.addDirectory spec = .ok x') : x'.Fresh := by
  unfold Session.addDirectory at hadd
  obtain ⟨below, hbelow, hadd⟩ := ok_of_bind hadd
  obtain ⟨d, hd, hadd⟩ := ok_of_bind hadd
  have hbuilt := h.built (ok_of_mapError hbelow)
  have hpool := pool_new (ok_of_mapError hd)
  obtain rfl := Except.ok.inj hadd
  have hsound := h.intact.pools.2
  refine h.mount hbuilt ?_ ?_ ?_
  · split
    · exact Nat.le_trans (Nat.le_succ _) (Nat.le_of_eq (Array.size_push _).symm)
    · exact Nat.le_refl _
  · intro p hp
    split at hp
    · rcases Array.mem_push.mp hp with hp | rfl
      · exact hsound p hp
      · exact ScratchPool.sound_ofDepth _
    · exact hsound p hp
  · rw [hpool]
    split
    · exact Nat.lt_of_lt_of_eq (Nat.lt_succ_self _) (Array.size_push _).symm
    · exact h.pools_pos

-- What every call that succeeds keeps is kept by all of them one after the other.
theorem of_foldlM_ok {α β ε : Type} {f : β → α → Except ε β} {inv : β → Prop} {xs : List α} {b b' : β}
    (hf : ∀ b a b', a ∈ xs → inv b → f b a = .ok b' → inv b') (hb : inv b)
    (h : xs.foldlM f b = .ok b') : inv b' := by
  induction xs generalizing b with
  | nil => exact Except.ok.inj h ▸ hb
  | cons a rest ih =>
    rw [List.foldlM_cons] at h
    obtain ⟨b₁, hfirst, hrest⟩ := ok_of_bind h
    exact ih (fun b a b' ha => hf b a b' (List.mem_cons_of_mem _ ha))
      (hf b a b₁ List.mem_cons_self hb hfirst) hrest

theorem fresh_of_files {files : Option FileCache} {depth : Nat} {backends : List BackendSpec}
    {directories : List DirectorySpec} (hsound : ∀ c, files = some c → c.Sound)
    (hmemory : ∀ spec ∈ backends, spec.InMemory)
    (hnew : (do
      let pool ← (ScratchPool.new depth).mapError Failure.breach
      let bare : Session := { site := { tier := { files, pools := #[pool] }, store := {} } }
      let mounted ← backends.foldlM Session.addBackend bare
      directories.foldlM Session.addDirectory mounted) = .ok start) : start.Fresh := by
  obtain ⟨pool, hpool, hnew⟩ := ok_of_bind hnew
  obtain ⟨mounted, hmounted, hnew⟩ := ok_of_bind hnew
  have hempty : Fresh { site := { tier := { files, pools := #[pool] }, store := {} } } := by
    refine ⟨⟨hsound, rfl, rfl, ?_⟩, Nat.zero_lt_one, ?_, ?_, ?_, rfl, rfl, rfl⟩
    · intro p hp
      rw [List.mem_singleton.mp (Array.mem_def.mp hp)]
      exact ScratchPool.sound_new (ok_of_mapError hpool)
    · exact fun t ht => absurd ht (Array.not_mem_empty t)
    · exact fun b hb => absurd hb (Array.not_mem_empty b)
    · exact fun m hm => absurd hm (Array.not_mem_empty m)
  have hbackends := of_foldlM_ok (fun _ spec _ hspec h => h.addBackend (hmemory spec hspec)) hempty
    hmounted
  exact of_foldlM_ok (fun _ _ _ _ h => h.addDirectory) hbackends hnew

theorem new_fresh {cache : Option Sizing} {memory : Memory} {depth : Nat}
    {backends : List BackendSpec} {directories : List DirectorySpec}
    (hmemory : ∀ spec ∈ backends, spec.InMemory)
    (hnew : new cache depth backends directories memory = .ok start) : start.Fresh := by
  unfold new at hnew
  cases cache with
  | none => exact fresh_of_files (fun _ hc => absurd hc (Option.some_ne_none _).symm) hmemory hnew
  | some sizing =>
    obtain ⟨files, hfiles, hnew⟩ := ok_of_bind hnew
    cases hmade : FileCache.ofSizing sizing memory with
    | error e =>
      rw [hmade] at hfiles
      cases hfiles
    | ok c =>
      rw [hmade] at hfiles
      obtain rfl := Except.ok.inj hfiles
      refine fresh_of_files (fun c' hc' => ?_) hmemory hnew
      exact Option.some.inj hc' ▸ (FileCache.ofSizing_sound hmade).1

end Session

end Blockwise
